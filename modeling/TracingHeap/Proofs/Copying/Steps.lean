import TracingHeap.Proofs.Copying.Outcome

/-! One reference is followed.

An object that has not been met is copied behind the last copy; of one that has been copied the old header
names the copy. The copy of an object is recognized unless it is empty and the last one. -/

set_option autoImplicit false

namespace TracingHeap

/-- What copying one more object makes of the state. -/
def departed (space : Space) (m₀ : Memory) (l : List Nat) (w : Nat) (e : Evacuation) : Evacuation where
  memory := e.memory.movedBlock (blockOf w) (space.start + (l.map m₀.blockSize).sum) (m₀.blockSize w)
  reserve := { space with cursor := (l.map m₀.blockSize).sum + m₀.blockSize w }
  copies := e.copies.insert (copyOf space m₀ (l ++ [w]) w)
  forwarded := e.forwarded.insert w
  objectsMoved := e.objectsMoved + 1
  bytesMoved := e.bytesMoved + m₀.blockSize w

theorem copyOf_append {space : Space} {m₀ : Memory} {l : List Nat} {w : Nat} (fresh : w ∉ l) :
    copyOf space m₀ (l ++ [w]) w = payloadOf (space.start + (l.map m₀.blockSize).sum) := by
  rw [copyOf, placed_of_notMem fresh, placed, if_pos rfl]

/-- An object that has not been copied is, if there is room for it. -/
theorem Evacuate.evacuate_eq {space : Space} {m₀ : Memory} {l : List Nat} {e : Evacuation} {w : Nat} {h : Header}
    (size : h.footprint = m₀.blockSize w) (regular : e.memory.Regular)
    (reserve : e.reserve = { space with cursor := (l.map m₀.blockSize).sum }) (fresh : w ∉ l)
    (unknown : e.forwarded.contains w = false) (room : (l.map m₀.blockSize).sum + m₀.blockSize w ≤ space.size)
    (source : e.memory.holds (blockOf w) (m₀.blockSize w) = true)
    (target : e.memory.holds (space.start + (l.map m₀.blockSize).sum) (m₀.blockSize w) = true)
    (large : headerSize ≤ m₀.blockSize w) :
    Evacuate.evacuate w h e = .ok (copyOf space m₀ (l ++ [w]) w) (departed space m₀ l w e) := by
  have noted : Evacuate.noteDeparture w e = .ok () { e with forwarded := e.forwarded.insert w } := by
    simp only [Evacuate.noteDeparture, unknown, Bool.false_eq_true, if_false]
  have allotted : Evacuate.allot (m₀.blockSize w) { e with forwarded := e.forwarded.insert w }
      = .ok (space.start + (l.map m₀.blockSize).sum) { e with
          forwarded := e.forwarded.insert w
          reserve := { space with cursor := (l.map m₀.blockSize).sum + m₀.blockSize w } } := by
    simp only [Evacuate.allot, Space.bump, reserve, room, if_true, Space.top]
  have moved := Memory.moveBlock_eq regular source target large
  have copied := Evacuate.access_ok (e := { e with
    forwarded := e.forwarded.insert w
    reserve := { space with cursor := (l.map m₀.blockSize).sum + m₀.blockSize w } }) moved
  unfold Evacuate.evacuate
  simp only [size]
  rw [run_bind noted, run_bind allotted, run_bind copied, departed, copyOf_append fresh]
  rfl

namespace Moving

variable {types : TypeTable} {roots : List Slot} {resident : Std.TreeSet Nat} {space : Space} {m₀ : Memory}
  {live : Nat → Prop} {l : List Nat} {done : List Origin} {e : Evacuation} {o : Origin} {w : Nat}
  (footing : Footing types roots resident space m₀ live) (moving : Moving types roots space m₀ live l done e)

include footing moving

theorem header_stayed (holds : live w) (fresh : w ∉ l) :
    e.memory.header (blockOf w) = m₀.header (blockOf w) := by
  have front := footing.holds_header holds
  apply Memory.header_stay footing.regular moving.shape front
  intro i lt
  exact moving.stayed w holds fresh i (Nat.lt_of_lt_of_le lt (footing.front holds))

theorem holds_firstWord (holds : live w) : e.memory.holds (blockOf w) wordSize = true :=
  Memory.holds_of_range (moving.regular footing) (moving.holds_front footing holds) (Nat.le_refl _)
    (by unfold headerSize wordSize; omega)

/-- The header in an old place is the one before the collection, unless the object has been copied. -/
theorem header_eq (holds : live w) : e.memory.header (blockOf w) = headerLeft space m₀ l w := by
  by_cases member : w ∈ l
  · rw [headerLeft_of_mem member, moving.left w member]
  · rw [headerLeft_of_notMem member, moving.header_stayed footing holds member]

theorem readObject_eq (holds : live w) : e.memory.readObject w =
    match (headerLeft space m₀ l w).check with
    | .ok state => .ok (headerLeft space m₀ l w, state)
    | .error defect => .error (.corrupted w defect) := by
  have readable := moving.holds_firstWord footing holds
  cases check : (headerLeft space m₀ l w).check with
  | ok state =>
    simp only [Memory.readObject, Memory.readHeader, readable, if_true, bind, Except.bind,
      moving.header_eq footing holds, check]
  | error defect =>
    simp only [Memory.readObject, Memory.readHeader, readable, if_true, bind, Except.bind,
      moving.header_eq footing holds, check]

/-- The copy of an object is taken for one, unless it is the last copy and empty. -/
theorem contains_copy (member : w ∈ l) :
    e.reserve.contains (copyOf space m₀ l w) = true ↔ ¬ (l.getLast? = some w ∧ m₀.isEmpty w = true) := by
  have holds := moving.reached _ member
  have bounds := copyOf_bounds space m₀ member
  have positive (x : Nat) (known : x ∈ l) : 0 < m₀.blockSize x :=
    Nat.lt_of_lt_of_le (by decide) (footing.large (moving.reached _ known))
  have last : placed m₀.blockSize space.start l w + m₀.blockSize w = space.start + (l.map m₀.blockSize).sum ↔
      l.getLast? = some w := placed_end positive moving.nodup member
  have size : m₀.blockSize w = (headerSize + m₀.payloadSize w + 7) / wordSize * wordSize :=
    footprint_eq (footing.small w holds)
  rw [Space.contains_iff, moving.reserve, ← last]
  unfold copyOf at bounds ⊢
  rw [blockOf_payloadOf] at bounds
  simp only [Space.top, Memory.isEmpty, payloadOf, headerSize, wordSize, decide_eq_true_eq] at *
  omega

omit footing in
theorem contains_copies (member : w ∈ l) : e.copies.contains (copyOf space m₀ l w) = true :=
  (moving.copies _).2 ⟨w, member, rfl⟩

/-- A forwarding target is looked up among the copies, and has to lie in the used part of the reserve. -/
theorem recognized_eq (target : Nat) :
    (e.reserve.contains target && e.copies.contains target) = recognized space m₀ l target := by
  rw [Bool.eq_iff_iff, Bool.and_eq_true, moving.copies, recognized, List.any_eq_true]
  constructor
  · rintro ⟨inside, q, member, rfl⟩
    exact ⟨q, member, decide_eq_true ⟨rfl, (moving.contains_copy footing member).1 inside⟩⟩
  · rintro ⟨q, member, shown⟩
    obtain ⟨rfl, other⟩ := of_decide_eq_true shown
    exact ⟨(moving.contains_copy footing member).2 other, q, member, rfl⟩

omit footing in
theorem nodup_append (fresh : w ∉ l) : (l ++ [w]).Nodup := by
  refine List.nodup_append.2 ⟨moving.nodup, List.pairwise_singleton _ _, fun p member q single same => ?_⟩
  obtain rfl := List.mem_singleton.1 single
  exact fresh (same ▸ member)

omit footing in
theorem reached_append (fit : live w ∧ m₀.Unmarked w) {p : Nat} (member : p ∈ l ++ [w]) : live p ∧ m₀.Unmarked p := by
  rcases List.mem_append.1 member with old | new
  · exact moving.reached p old
  · rwa [List.mem_singleton.1 new]

/-- Behind the copies there is room for one more. -/
theorem total_append (fit : live w ∧ m₀.Unmarked w) (fresh : w ∉ l) :
    (l.map m₀.blockSize).sum + m₀.blockSize w ≤ space.size := by
  have total := footing.total _ (moving.nodup_append fresh) fun p member => moving.reached_append fit member
  simpa using total

theorem holds_target (fit : live w ∧ m₀.Unmarked w) (fresh : w ∉ l) :
    e.memory.holds (space.start + (l.map m₀.blockSize).sum) (m₀.blockSize w) = true := by
  have room := moving.total_append footing fit fresh
  rw [moving.shape.holds]
  exact Memory.holds_of_range footing.regular footing.reserve (by omega) (by omega)

section

variable (fit : live w ∧ m₀.Unmarked w) (fresh : w ∉ l)

include fit fresh

/-- Outside the new copy and the old header every byte stays. -/
theorem byte_departed {a : Nat} (copy : a < space.start + (l.map m₀.blockSize).sum ∨
      space.start + (l.map m₀.blockSize).sum + m₀.blockSize w ≤ a) (header : a < blockOf w ∨ blockOf w + headerSize ≤ a) :
    (departed space m₀ l w e).memory.byte a = e.memory.byte a :=
  Memory.byte_movedBlock_of_outside (moving.regular footing) (moving.holds_source footing fit)
    (moving.holds_target footing fit fresh) (footing.large fit) copy header

/-- Nothing of another object changes, whether it is still in its old place or not. -/
theorem byte_departed_of_live {q i : Nat} (holds : live q) (different : q ≠ w) (lt : i < m₀.extent q) :
    (departed space m₀ l w e).memory.byte (blockOf q + i) = e.memory.byte (blockOf q + i) := by
  have total := moving.total_append footing fit fresh
  have away := footing.away q holds
  have large := footing.large fit
  have extent := Memory.extent_of_unmarked fit.2
  refine moving.byte_departed footing fit fresh (by omega) ?_
  rcases Nat.lt_or_gt_of_ne different with less | greater
  · have gap := footing.apart q w holds fit.1 less
    omega
  · have gap := footing.apart w q fit.1 holds greater
    omega

theorem byte_departed_of_copy {q i : Nat} (member : q ∈ l) (lt : i < m₀.blockSize q) :
    (departed space m₀ l w e).memory.byte (blockOf (copyOf space m₀ l q) + i) =
      e.memory.byte (blockOf (copyOf space m₀ l q) + i) := by
  have total := moving.total_append footing fit fresh
  have bounds := copyOf_bounds space m₀ member
  have away := footing.away w fit.1
  have large := footing.large fit
  have extent := Memory.extent_of_unmarked fit.2
  exact moving.byte_departed footing fit fresh (by omega) (by omega)

/-- The new copy is clear of the old place. -/
theorem target_clear : blockOf w + m₀.blockSize w ≤ space.start + (l.map m₀.blockSize).sum ∨
    space.start + (l.map m₀.blockSize).sum + m₀.blockSize w ≤ blockOf w := by
  have total := moving.total_append footing fit fresh
  have away := footing.away w fit.1
  have extent := Memory.extent_of_unmarked fit.2
  omega

omit footing fit fresh in
theorem copies_departed (q : Nat) : (departed space m₀ l w e).copies.contains q = true ↔
    ∃ p ∈ l ++ [w], copyOf space m₀ (l ++ [w]) p = q := by
  have grown : l <+: l ++ [w] := List.prefix_append _ _
  rw [departed, contains_insert_iff, moving.copies]
  constructor
  · rintro (rfl | ⟨p, member, rfl⟩)
    · exact ⟨w, List.mem_append_right _ List.mem_cons_self, rfl⟩
    · exact ⟨p, grown.subset member, copyOf_extends grown member⟩
  · rintro ⟨p, member, rfl⟩
    rcases List.mem_append.1 member with old | new
    · exact .inr ⟨p, old, (copyOf_extends grown old).symm⟩
    · rw [List.mem_singleton.1 new]
      exact .inl rfl

theorem left_departed {q : Nat} (member : q ∈ l ++ [w]) : (departed space m₀ l w e).memory.header (blockOf q) =
    { m₀.header (blockOf q) with
      state := ObjectState.forwarded.code, forward := copyOf space m₀ (l ++ [w]) q } := by
  have regular := moving.regular footing
  rcases List.mem_append.1 member with old | new
  · have holds := (moving.reached _ old).1
    rw [copyOf_extends (List.prefix_append _ _) old, ← moving.left q old]
    apply Memory.header_stay regular (Memory.sameShape_movedBlock ..) (moving.holds_front footing holds)
    intro i lt
    exact moving.byte_departed_of_live footing fit fresh holds (fun same => fresh (same ▸ old))
      (Nat.lt_of_lt_of_le lt (footing.front holds))
  · obtain rfl := List.mem_singleton.1 new
    rw [copyOf_append fresh, ← moving.header_stayed footing fit.1 fresh]
    exact Memory.header_movedBlock regular (moving.holds_source footing fit) (moving.holds_target footing fit fresh)
      (footing.large fit) (moving.target_clear footing fit fresh)

theorem copied_departed {q i : Nat} (member : q ∈ l ++ [w]) (lt : i < m₀.blockSize q)
    (unwritten : ∀ k, Origin.word q k ∈ done → i < k ∨ k + wordSize ≤ i) :
    (departed space m₀ l w e).memory.byte (blockOf (copyOf space m₀ (l ++ [w]) q) + i) = m₀.byte (blockOf q + i) := by
  rcases List.mem_append.1 member with old | new
  · rw [copyOf_extends (List.prefix_append _ _) old, moving.byte_departed_of_copy footing fit fresh old lt]
    exact moving.copied q old i lt unwritten
  · obtain rfl := List.mem_singleton.1 new
    have extent := Memory.extent_of_unmarked fit.2
    rw [copyOf_append fresh, blockOf_payloadOf, ← moving.stayed q fit.1 fresh i (extent.symm ▸ lt)]
    exact Memory.byte_movedBlock_of_copy (moving.regular footing) (moving.holds_source footing fit)
      (moving.holds_target footing fit fresh) (footing.large fit) (moving.target_clear footing fit fresh) lt

/-- A word that has been rewritten leads where it led, since its object has been copied before. -/
theorem rewritten_departed {q k : Nat} (written : Origin.word q k ∈ done) :
    (departed space m₀ l w e).memory.word (blockOf (copyOf space m₀ (l ++ [w]) q) + k) =
      aim space m₀ (l ++ [w]) (m₀.word (blockOf q + k)) := by
  have grown : l <+: l ++ [w] := List.prefix_append _ _
  obtain ⟨old, place⟩ := moving.valid _ written
  have holds := moving.reached _ old
  have last := (footing.place holds place).2.1
  have spans := footing.spans holds
  have within := moving.holds_word footing (moving.valid _ written)
  have word : aim space m₀ (l ++ [w]) (m₀.word (blockOf q + k)) = aim space m₀ l (m₀.word (blockOf q + k)) :=
    (moving.settled _ written).aim_extends grown fun p member => (moving.reached_append fit member).2
  rw [copyOf_extends grown old, word, ← moving.rewritten q k written]
  apply Memory.word_stay (moving.regular footing) (Memory.sameShape_movedBlock ..) within
  intro i lt
  rw [Nat.add_assoc]
  exact moving.byte_departed_of_copy footing fit fresh old (by omega)

/-- The state after an object has been copied. -/
theorem depart : Moving types roots space m₀ live (l ++ [w]) done (departed space m₀ l w e) := by
  have grown : l <+: l ++ [w] := List.prefix_append _ _
  have sum : ((l ++ [w]).map m₀.blockSize).sum = (l.map m₀.blockSize).sum + m₀.blockSize w := by simp
  constructor
  case nodup => exact moving.nodup_append fresh
  case reached => exact fun p member => moving.reached_append fit member
  case valid => exact fun o member => (moving.valid o member).grow grown
  case settled => exact fun o member => (moving.settled o member).grow grown
  case reserve =>
    rw [sum]
    rfl
  case copies => exact moving.copies_departed
  case forwarded =>
    intro p
    rw [departed, contains_insert_iff, moving.forwarded, List.mem_append, List.mem_singleton]
    exact or_comm
  case objects => rw [departed, moving.objects, List.length_append, List.length_singleton]
  case bytes => rw [departed, moving.bytes, sum]
  case shape => exact moving.shape.trans (Memory.sameShape_movedBlock ..)
  case stayed =>
    intro q holds stays i lt
    obtain ⟨old, new⟩ := not_or.1 (mt List.mem_append.2 stays)
    rw [moving.byte_departed_of_live footing fit fresh holds (by simpa using new) lt]
    exact moving.stayed q holds old i lt
  case left => exact fun q member => moving.left_departed footing fit fresh member
  case copied => exact fun q member i lt unwritten => moving.copied_departed footing fit fresh member lt unwritten
  case rewritten => exact fun q k written => moving.rewritten_departed footing fit fresh written
  case elsewhere =>
    intro a clear out
    have own := clear w fit.1
    have large := footing.large fit
    have extent := Memory.extent_of_unmarked fit.2
    rw [sum] at out
    rw [← moving.elsewhere a clear (by omega)]
    exact moving.byte_departed footing fit fresh (by omega) (by omega)
  case cell =>
    intro i
    show (Memory.movedBlock _ _ _ _).cells[i]?.getD 0 = _
    rw [Memory.cells_movedBlock]
    have old := moving.cell i
    simp only [Memory.slot] at old
    rw [old]
    split
    · next written =>
      exact ((moving.settled _ written).aim_extends grown fun p member => (moving.reached_append fit member).2).symm
    · rfl

end

theorem evacuate_ok (fit : live w ∧ m₀.Unmarked w) (fresh : w ∉ l) :
    ∃ e', Evacuate.evacuate w (m₀.header (blockOf w)) e = .ok (copyOf space m₀ (l ++ [w]) w) e' ∧
      Moving types roots space m₀ live (l ++ [w]) done e' := by
  have unknown : e.forwarded.contains w = false := by
    rw [← Bool.not_eq_true, moving.forwarded]
    exact fresh
  exact ⟨_, Evacuate.evacuate_eq rfl (moving.regular footing) moving.reserve fresh unknown
    (moving.total_append footing fit fresh) (moving.holds_source footing fit) (moving.holds_target footing fit fresh)
    (footing.large fit), moving.depart footing fit fresh⟩

/-- Where a reference leads to, and what has been copied then. -/
theorem destination_spec (value : w ≠ 0) (known : resident.contains w = true → live w) :
    match meet resident space m₀ l w with
    | .ok l' => ∃ e', Evacuate.destination resident w e = .ok (aim space m₀ l' w) e' ∧
        Moving types roots space m₀ live l' done e' ∧ Settled space m₀ live l' w
    | .error x => Evacuate.destination resident w e = .error x e := by
  unfold meet Evacuate.destination
  by_cases there : resident.contains w = true
  · have holds := known there
    have object := moving.readObject_eq footing holds
    simp only [value, there, if_false, Bool.not_true, Bool.false_eq_true, Bool.true_eq_false]
    cases check : (headerLeft space m₀ l w).check with
    | error defect =>
      simp only [check] at object
      exact run_bind_error (Evacuate.look_error object)
    | ok state =>
      simp only [check] at object
      cases state with
      | unmarked =>
        -- A copied object is not unmarked, so this one has not been copied.
        have fresh : w ∉ l := by
          intro member
          have code : ObjectState.forwarded.code = ObjectState.unmarked.code := by
            rw [headerLeft_of_mem member] at check
            exact (Header.check_eq_ok.1 check).2
          exact absurd code (by decide)
        rw [headerLeft_of_notMem fresh] at object check
        obtain ⟨e', ran, next⟩ := moving.evacuate_ok footing ⟨holds, check⟩ fresh
        have member : w ∈ l ++ [w] := List.mem_append_right _ List.mem_cons_self
        refine ⟨e', ?_, next, .inr (.inl member)⟩
        rw [aim_of_mem value member, run_bind (Evacuate.look_ok object)]
        exact ran
      | marked =>
        rw [run_bind (Evacuate.look_ok object)]
        rfl
      | forwarded =>
        have copy := moving.recognized_eq footing (headerLeft space m₀ l w).forward
        rw [run_bind (Evacuate.look_ok object)]
        simp only []
        rw [run_bind_get]
        simp only [copy]
        by_cases found : recognized space m₀ l (headerLeft space m₀ l w).forward = true
        · simp only [found, if_true]
          refine ⟨e, ?_, moving, ?_⟩
          · rw [aim, if_neg value]
            rfl
          · by_cases member : w ∈ l
            · exact .inr (.inl member)
            · rw [headerLeft_of_notMem member] at check found
              obtain ⟨q, within, shown⟩ := List.any_eq_true.1 found
              exact .inr (.inr ⟨holds, check, q, within, (of_decide_eq_true shown).1⟩)
        · simp only [found, if_false, Bool.false_eq_true]
          rfl
  · simp only [value, there, if_false, Bool.not_false, if_true]
    rfl

theorem known_origin (valid : o.Valid types roots m₀ l) (value : o.original m₀ ≠ 0)
    (there : resident.contains (o.original m₀) = true) : live (o.original m₀) := by
  cases o with
  | root i => exact footing.started _ valid value there
  | word p k => exact footing.led p (moving.reached p valid.1) _ valid.2 value there

/-- Following one reference. -/
theorem forwardSlot_spec (valid : o.Valid types roots m₀ l) (fresh : o ∉ done) :
    match meet resident space m₀ l (o.original m₀) with
    | .ok l' => ∃ e', Evacuate.forwardSlot resident (o.slot space m₀ l) e = .ok () e' ∧
        Moving types roots space m₀ live l' (o :: done) e'
    | .error x => Evacuate.forwardSlot resident (o.slot space m₀ l) e = .error x e := by
  obtain ⟨there, value⟩ := moving.slot_eq footing valid fresh
  have read : e.memory.readSlot (o.slot space m₀ l) = .ok (o.original m₀) := by
    rw [Memory.readSlot, if_pos there, value]
  unfold Evacuate.forwardSlot
  rw [run_bind (Evacuate.look_ok read)]
  by_cases null : o.original m₀ = 0
  · have skipped : meet resident space m₀ l (o.original m₀) = .ok l := if_pos null
    rw [skipped]
    simp only [null, ne_eq, not_true, if_false]
    exact ⟨e, rfl, moving.keep footing valid fresh null⟩
  · have found := moving.destination_spec footing null (moving.known_origin footing valid null)
    simp only [null, ne_eq, not_false_eq_true, if_true]
    cases met : meet resident space m₀ l (o.original m₀) with
    | error x =>
      rw [met] at found
      exact run_bind_error found
    | ok l' =>
      rw [met] at found
      obtain ⟨e', ran, next, settled⟩ := found
      -- The copy whose word is rewritten was made before, and its place in the longer list is the same.
      have grown := meet_extends met
      have same : o.slot space m₀ l' = o.slot space m₀ l := Origin.slot_extends valid grown
      have there' := (next.slot_eq footing (valid.grow grown) fresh).1
      refine ⟨_, ?_, next.write footing (valid.grow grown) fresh null settled⟩
      rw [run_bind ran, ← same]
      exact Evacuate.access_ok (Access.storeSlot_ok there')

-- By induction on the references, for any objects copied before. A failure is left where it happened: the words
-- behind it are as they were.
/-- Following references one after the other. -/
theorem forwardSlots_spec (origins : List Origin) (valid : ∀ o ∈ origins, o.Valid types roots m₀ l)
    (fresh : ∀ o ∈ origins, o ∉ done) (nodup : origins.Nodup) :
    match (origins.map (·.original m₀)).foldlM (meet resident space m₀) l with
    | .ok l' => ∃ e', Evacuate.forwardSlots resident (origins.map (·.slot space m₀ l)) e = .ok () e' ∧
        Moving types roots space m₀ live l' (origins.reverse ++ done) e'
    | .error x => ∃ e' l' done', Evacuate.forwardSlots resident (origins.map (·.slot space m₀ l)) e = .error x e' ∧
        Moving types roots space m₀ live l' done' e' ∧ l <+: l' ∧ ∃ word, meet resident space m₀ l' word = .error x := by
  induction origins generalizing l done e with
  | nil => exact ⟨e, rfl, moving⟩
  | cons o rest ih =>
    obtain ⟨once, nodup⟩ := List.nodup_cons.1 nodup
    have step := moving.forwardSlot_spec footing (valid o List.mem_cons_self) (fresh o List.mem_cons_self)
    rw [List.map_cons, List.map_cons, List.foldlM_cons, Evacuate.forwardSlots]
    cases met : meet resident space m₀ l (o.original m₀) with
    | error x =>
      rw [met] at step
      exact ⟨e, l, done, run_bind_error step, moving, List.prefix_refl l, _, met⟩
    | ok l₁ =>
      rw [met] at step
      obtain ⟨e₁, ran, next⟩ := step
      have grown := meet_extends met
      have later := ih next (fun x member => (valid x (List.mem_cons_of_mem o member)).grow grown)
        (fun x member old => by
          rcases List.mem_cons.1 old with rfl | done
          · exact once member
          · exact fresh x (List.mem_cons_of_mem o member) done) nodup
      have slots : rest.map (·.slot space m₀ l₁) = rest.map (·.slot space m₀ l) :=
        List.map_congr_left fun x member => Origin.slot_extends (valid x (List.mem_cons_of_mem o member)) grown
      rw [slots] at later
      simp only [bind, Except.bind]
      show match (rest.map (·.original m₀)).foldlM (meet resident space m₀) l₁ with | .ok l' => _ | .error x => _
      cases all : (rest.map (·.original m₀)).foldlM (meet resident space m₀) l₁ with
      | ok l' =>
        rw [all] at later
        obtain ⟨e', ran', moving'⟩ := later
        refine ⟨e', (run_bind ran).trans ran', ?_⟩
        rw [List.reverse_cons, List.append_assoc]
        exact moving'
      | error x =>
        rw [all] at later
        obtain ⟨e', l', done', ran', moving', grown', stops⟩ := later
        exact ⟨e', l', done', (run_bind ran).trans ran', moving', grown.trans grown', stops⟩

end Moving

end TracingHeap
