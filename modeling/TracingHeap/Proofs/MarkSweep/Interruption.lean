import TracingHeap.Proofs.MarkSweep.Collection

/-! A collection by marking that is broken off.

Whatever stands in the memory, marks are all that it has written by then: no block is given back before all headers have
been looked at. -/

set_option autoImplicit false

namespace TracingHeap

/-- The memories differ in the state bytes of some held headers, and in nothing else. -/
structure Memory.Restated (held : Nat → Prop) (m m' : Memory) : Prop where
  shape : m.SameShape m'
  cells : m'.cells = m.cells
  byte : ∀ a, (∀ p, held p → a ≠ blockOf p + 5) → m'.byte a = m.byte a

namespace Memory.Restated

variable {held : Nat → Prop} {m m' m'' : Memory}

theorem refl (m : Memory) : Restated held m m := ⟨.refl m, rfl, fun _ _ => rfl⟩

theorem trans (first : Restated held m m') (second : Restated held m' m'') : Restated held m m'' :=
  ⟨first.shape.trans second.shape, second.cells.trans first.cells,
    fun a apart => (second.byte a apart).trans (first.byte a apart)⟩

theorem setState {p : Nat} (holds : held p) (s : ObjectState) (m : Memory) :
    Restated held m (m.setByte (blockOf p + 5) s.code) := by
  refine ⟨sameShape_setByte m _ _, ?_, fun a apart => byte_setByte_of_ne m _ (apart p holds)⟩
  rw [setByte, cells_modifyArena]

/-- A slot outside the headers is as it was. -/
theorem slot_eq (restated : Restated held m m') (regular : m.Regular) {s : Slot} (inside : m.holdsSlot s = true)
    (outside : ∀ a, s = .field a → ∀ i, i < wordSize → ∀ p, held p → a + i ≠ blockOf p + 5) : m'.slot s = m.slot s := by
  cases s with
  | cell i => simp only [slot, restated.cells]
  | field a =>
    refine word_stay regular restated.shape inside fun i lt => ?_
    exact restated.byte _ (outside a rfl i lt)

end Memory.Restated

namespace Memory

variable {roots : List Slot} {m : Memory}

theorem holdsSlot_of_readRoots {words : List Nat} (read : roots.mapM m.readSlot = .ok words) :
    ∀ s ∈ roots, m.holdsSlot s = true := by
  induction roots generalizing words with
  | nil => exact fun s root => nomatch root
  | cons s rest ih =>
    rw [List.mapM_cons] at read
    obtain ⟨word, first, later⟩ := bind_eq_ok.1 read
    obtain ⟨others, behind, -⟩ := bind_eq_ok.1 later
    intro s' root
    rcases List.mem_cons.1 root with rfl | root
    · unfold readSlot at first
      split at first
      · assumption
      · cases first
    · exact ih behind s' root

/-- A root that cannot be read is a fault. -/
theorem readRoots_not_refused {e : HeapError} : roots.mapM m.readSlot ≠ .error (.violation e) := by
  induction roots with
  | nil => exact fun read => nomatch read
  | cons s rest ih =>
    intro read
    rw [List.mapM_cons] at read
    by_cases inside : m.holdsSlot s = true
    · have first : m.readSlot s = .ok (m.slot s) := if_pos inside
      rw [first] at read
      cases later : rest.mapM m.readSlot with
      | ok words => rw [later] at read; cases read
      | error x =>
        rw [later] at read
        cases read
        exact ih later
    · have first : m.readSlot s = .error (.fault s.fault) := if_neg inside
      rw [first] at read
      cases read

end Memory

namespace MarkSweep

variable {types : TypeTable} {roots : List Slot} {c : MarkSweep} {m m' : Memory}

theorem restates_markObject (types : TypeTable) (c : MarkSweep) (p : Nat) :
    Always (Memory.Restated (c.owns · = true)) (c.markObject types p) := by
  have trans (m m' m'' : Memory) (first : m.Restated (c.owns · = true) m') (second : m'.Restated (c.owns · = true) m'') :=
    first.trans second
  unfold markObject
  by_cases owns : c.owns p = true
  · simp only [owns, Bool.not_true, Bool.false_eq_true, if_false]
    refine .bind trans (Access.always_look .refl _) fun (header, state) => ?_
    cases state with
    | marked => exact .pure .refl _
    | forwarded => exact .throw .refl _
    | unmarked =>
      refine .bind trans (Access.always_guarded .refl (Memory.Restated.setState owns .marked)) fun _ => ?_
      exact .bind trans (Access.always_look .refl _) fun words => .pure .refl _
  · simp only [owns, Bool.not_false, if_true]
    exact .throw .refl _

theorem restates_mark (types : TypeTable) (c : MarkSweep) (rounds : Nat) (work : List Nat) :
    Always (Memory.Restated (c.owns · = true)) (c.mark types rounds work) := by
  induction rounds generalizing work with
  | zero =>
    intro m
    rw [mark, run_bind_get]
    split <;> exact .refl m
  | succ rounds ih =>
    intro m
    rw [mark_succ]
    split
    · exact .refl m
    · exact Always.bind (fun _ _ _ first second => first.trans second) (restates_markObject types c _) (fun _ => ih _) m

theorem restates_surveyBlocks {bs : List Block} (recorded : ∀ b ∈ bs, c.records[b.start]? = some b.size) (s : Survey) :
    Always (Memory.Restated (c.owns · = true)) (surveyBlocks s bs) := by
  have trans (m m' m'' : Memory) (first : m.Restated (c.owns · = true) m') (second : m'.Restated (c.owns · = true) m'') :=
    first.trans second
  induction bs generalizing s with
  | nil => exact .pure .refl s
  | cons b rest ih =>
    refine .bind trans (.bind trans (Access.always_look .refl _) fun (header, state) => ?_)
      (ih fun x member => recorded x (List.mem_cons_of_mem b member))
    cases state with
    | marked =>
      have cleared (m : Memory) : m.Restated (c.owns · = true) (m.setByte (b.start + 5) ObjectState.unmarked.code) := by
        have set : m.Restated (c.owns · = true) (m.setByte (blockOf (payloadOf b.start) + 5) ObjectState.unmarked.code) :=
          .setState (owns_payloadOf (recorded b List.mem_cons_self)) .unmarked m
        rwa [blockOf_payloadOf] at set
      exact .bind trans (Access.always_guarded .refl cleared) fun _ => .pure .refl _
    | unmarked => exact .pure .refl _
    | forwarded => exact .throw .refl _

/-- Blocks can be given back, or they lie outside the arenas. -/
theorem reclaimAll_not_refused {c : MarkSweep} {dead : List Block} {e : HeapError} :
    c.reclaimAll dead m ≠ .error (.violation e) m' := by
  induction dead generalizing c m with
  | nil => exact fun ran => nomatch ran
  | cons b rest ih =>
    intro ran
    rw [reclaimAll] at ran
    by_cases room : m.holds b.start b.size = true
    · have cleared : Access.clear b.start b.size m = .ok () (m.clear b.start b.size) := Access.guarded_ok room
      have freed : c.reclaim b m = .ok { c with
          records := c.records.erase b.start, free := c.free.insert b.start b.size } (m.clear b.start b.size) :=
        run_bind cleared
      rw [run_bind freed] at ran
      exact ih ran
    · have failed : Access.clear b.start b.size m = .error (.fault (.stray b.start)) m := by
        simp only [Access.clear, Access.guarded, room, Bool.false_eq_true, if_false]
      have failed' : c.reclaim b m = .error (.fault (.stray b.start)) m := run_bind_error failed
      cases ran.symm.trans (run_bind_error failed')

/-- A collection that reports a violation has written marks and nothing else. Its roots could be read. -/
theorem collect_refused {e : HeapError} (failed : c.collect types roots m = .error (.violation e) m') :
    m.Restated (c.owns · = true) m' ∧ ∀ s ∈ roots, m.holdsSlot s = true := by
  unfold collect at failed
  cases read : roots.mapM m.readSlot with
  | error x =>
    rw [run_bind_error (Access.look_error read)] at failed
    cases failed
    exact absurd read Memory.readRoots_not_refused
  | ok words =>
    have held := Memory.holdsSlot_of_readRoots read
    rw [run_bind (Access.look_ok read)] at failed
    cases marking : c.mark types (c.records.size + 1) (words.filter (· ≠ 0)).reverse m with
    | error x m₁ =>
      rw [run_bind_error marking] at failed
      cases failed
      exact ⟨(restates_mark types c _ _).of_error marking, held⟩
    | ok _ m₁ =>
      have marked := (restates_mark types c _ _).of_ok marking
      rw [run_bind marking, sweep] at failed
      cases survey : surveyBlocks {} c.blocks m₁ with
      | error x m₂ =>
        rw [run_bind_error survey] at failed
        cases failed
        exact ⟨marked.trans ((restates_surveyBlocks (fun b => mem_blocks.1) _).of_error survey), held⟩
      | ok s m₂ =>
        rw [run_bind survey] at failed
        cases reclaimed : c.reclaimAll s.dead m₂ with
        | ok c₃ m₃ => rw [run_bind reclaimed] at failed; cases failed
        | error x m₃ =>
          rw [run_bind_error reclaimed] at failed
          cases failed
          exact absurd reclaimed reclaimAll_not_refused

end MarkSweep

end TracingHeap
