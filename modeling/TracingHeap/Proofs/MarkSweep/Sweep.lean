import Mathlib.Data.List.Basic
import TracingHeap.Proofs.MarkSweep.Marking

/-! The sweep takes every mark off and gives back the blocks without one. -/

set_option autoImplicit false

namespace TracingHeap

namespace Marked

variable {types : TypeTable} {held : Nat → Prop} {m₀ m : Memory} {marks : List Nat} {p : Nat}

/-- Without marks the memory is as it was. -/
theorem byte_of_nil (marked : Marked m₀ [] m) (a : Nat) : m.byte a = m₀.byte a := by
  simpa using marked.bytes a

theorem state_byte (intact : Intact types held m₀) (holds : held p) :
    m₀.byte (blockOf p + 5) = ObjectState.unmarked.code := by
  have good := Header.check_eq_ok.1 (intact.unmarked p holds)
  rw [← good.2, Memory.header_eq intact.regular (intact.holds_header holds)]
  rfl

/-- One mark less. -/
theorem clearState (marked : Marked m₀ marks m) (intact : Intact types held m₀)
    (marksHeld : ∀ q ∈ marks, held q) (member : p ∈ marks) :
    Marked m₀ (marks.filter (· ≠ p)) (m.setByte (blockOf p + 5) ObjectState.unmarked.code) := by
  have holds := marksHeld p member
  have inside := Memory.holds_sub intact.regular (intact.holds_header holds) 5 1 (by decide)
  refine ⟨marked.shape.trans (Memory.sameShape_setByte m _ _), ?_, fun a => ?_⟩
  · rw [Memory.setByte, Memory.cells_modifyArena, marked.cells]
  · rw [Memory.byte_setByte (marked.shape.holds _ _ ▸ inside), marked.bytes]
    by_cases here : a = blockOf p + 5
    · rw [if_pos here, if_neg, here, state_byte intact holds]
      -- Two objects with their state in one byte are one object, and that one has been taken out.
      rintro ⟨q, kept, same⟩
      obtain ⟨old, other⟩ := List.mem_filter.1 kept
      have lowFirst := intact.low holds
      have lowSecond := intact.low (marksHeld q old)
      have different : q ≠ p := by simpa using other
      unfold blockOf at *
      omega
    · have elsewhere : (∃ q ∈ marks, a = blockOf q + 5) ↔ ∃ q ∈ marks.filter (· ≠ p), a = blockOf q + 5 := by
        constructor
        · rintro ⟨q, old, same⟩
          have other : q ≠ p := fun self => here (self ▸ same)
          exact ⟨q, List.mem_filter.2 ⟨old, decide_eq_true other⟩, same⟩
        · rintro ⟨q, kept, same⟩
          exact ⟨q, (List.mem_filter.1 kept).1, same⟩
      rw [if_neg here]
      simp only [elsewhere]

end Marked

namespace MarkSweep

variable {types : TypeTable} {roots : List Slot} {c : MarkSweep} {m₀ m m' : Memory} {marks : List Nat}

theorem mem_blocks {b : Block} : b ∈ c.blocks ↔ c.records[b.start]? = some b.size := by
  rw [← Std.TreeMap.mem_toList_iff_getElem?_eq_some]
  constructor
  · intro member
    obtain ⟨pair, found, rfl⟩ := List.mem_map.1 member
    exact found
  · exact fun found => List.mem_map.2 ⟨(b.start, b.size), found, rfl⟩

theorem nodup_starts (c : MarkSweep) : (c.blocks.map Block.start).Nodup := by
  have keys := c.records.nodup_keys
  rw [← Std.TreeMap.map_fst_toList_eq_keys] at keys
  unfold blocks
  rwa [List.map_map]

theorem nodup_blocks (c : MarkSweep) : c.blocks.Nodup :=
  List.Pairwise.of_map Block.start (fun _ _ different same => different (congrArg Block.start same)) (nodup_starts c)

theorem nodup_starts_reverse {l : List Block} (sub : l.Sublist c.blocks) : (l.reverse.map Block.start).Nodup := by
  rw [List.map_reverse]
  exact List.pairwise_reverse.2 (((nodup_starts c).sublist (sub.map Block.start)).imp Ne.symm)

-- Said without any assumption on the memory, because the books have to be in order also after the collection of
-- a heap that a program has corrupted.
/-- Whatever is in memory, only recorded blocks are found dead, and each once. -/
theorem surveyBlocks_dead {s s' : Survey} {bs : List Block} (ran : surveyBlocks s bs m = .ok s' m') :
    m.SameShape m' ∧ m'.cells = m.cells ∧ ∃ l : List Block, l.Sublist bs ∧ s'.dead = l.reverse ++ s.dead := by
  induction bs generalizing s m with
  | nil =>
    cases ran
    exact ⟨.refl _, rfl, [], List.nil_sublist _, rfl⟩
  | cons b rest ih =>
    rw [surveyBlocks] at ran
    cases first : surveyBlock s b m with
    | error e m₁ => rw [run_bind_error first] at ran; cases ran
    | ok s₁ m₁ =>
      rw [run_bind first] at ran
      obtain ⟨shape, cells, l, sub, dead⟩ := ih ran
      unfold surveyBlock at first
      cases read : m.readObject (payloadOf b.start) with
      | error e => rw [run_bind_error (Access.look_error read)] at first; cases first
      | ok pair =>
        rw [run_bind (Access.look_ok read)] at first
        obtain ⟨header, state⟩ := pair
        cases state with
        | forwarded => cases first
        | unmarked =>
          cases first
          refine ⟨shape, cells, b :: l, sub.cons_cons b, ?_⟩
          rw [dead, List.reverse_cons, List.append_assoc]
          rfl
        | marked =>
          by_cases room : m.holds b.start wordSize = true
          · have written : Access.setState b.start .unmarked m
                = .ok () (m.setByte (b.start + 5) ObjectState.unmarked.code) := Access.guarded_ok room
            simp only [] at first
            rw [run_bind written] at first
            cases first
            refine ⟨(Memory.sameShape_setByte ..).trans shape, cells.trans ?_, l, sub.cons b, dead⟩
            rw [Memory.setByte, Memory.cells_modifyArena]
          · have failed : Access.setState b.start .unmarked m = .error (.fault (.stray b.start)) m := by
              simp only [Access.setState, Access.guarded, room, Bool.false_eq_true, if_false]
            simp only [] at first
            rw [run_bind_error failed] at first
            cases first

/-- Nothing but the marks decides what becomes of a block. -/
def Survey.note (marks : List Nat) (s : Survey) (b : Block) : Survey :=
  if payloadOf b.start ∈ marks then { s with objectsLive := s.objectsLive + 1, bytesLive := s.bytesLive + b.size }
  else { s with dead := b :: s.dead }

theorem surveyBlock_eq (marked : Marked m₀ marks m) (intact : Intact types (c.owns · = true) m₀)
    (marksHeld : ∀ q ∈ marks, c.owns q = true) (s : Survey) {b : Block} (holds : c.owns (payloadOf b.start) = true) :
    surveyBlock s b m = .ok (s.note marks b)
      (if payloadOf b.start ∈ marks then m.setByte (b.start + 5) ObjectState.unmarked.code else m) := by
  obtain ⟨d, f⟩ := intact.framed _ holds
  have regular := marked.regular intact
  have f' := marked.framed intact marksHeld holds f
  unfold surveyBlock Survey.note
  by_cases member : payloadOf b.start ∈ marks
  · rw [run_bind (Access.look_ok (f'.readObject_eq regular (marked.check_of_mem intact marksHeld member)))]
    have room := f'.holds_front regular
    rw [blockOf_payloadOf] at room
    have written : Access.setState b.start .unmarked m
        = .ok () (m.setByte (b.start + 5) ObjectState.unmarked.code) := Access.guarded_ok room
    simp only [member, if_true]
    rw [run_bind written]
    rfl
  · have check : (m.header (blockOf (payloadOf b.start))).check = .ok .unmarked := by
      rw [marked.header_of_notMem intact marksHeld holds member]
      exact intact.unmarked _ holds
    rw [run_bind (Access.look_ok (f'.readObject_eq regular check))]
    simp only [member, if_false]
    rfl

/-- Where the headers are in order the survey finds every block, and takes the marks off. -/
theorem surveyBlocks_ok (intact : Intact types (c.owns · = true) m₀) {bs : List Block}
    (owned : ∀ b ∈ bs, c.owns (payloadOf b.start) = true) (nodup : (bs.map Block.start).Nodup) (s : Survey)
    (marked : Marked m₀ marks m) (marksHeld : ∀ q ∈ marks, c.owns q = true) :
    ∃ m', surveyBlocks s bs m = .ok (bs.foldl (Survey.note marks) s) m' ∧
      Marked m₀ (marks.filter (· ∉ bs.map (payloadOf ·.start))) m' := by
  induction bs generalizing s m marks with
  | nil =>
    refine ⟨m, rfl, ?_⟩
    rwa [List.filter_eq_self.2 fun q _ => by simp]
  | cons b rest ih =>
    obtain ⟨fresh, nodup⟩ := List.nodup_cons.1 nodup
    have holds := owned b List.mem_cons_self
    have ran := surveyBlock_eq marked intact marksHeld s holds
    have next : Marked m₀ (marks.filter (· ≠ payloadOf b.start)) (if payloadOf b.start ∈ marks then
        m.setByte (b.start + 5) ObjectState.unmarked.code else m) := by
      by_cases member : payloadOf b.start ∈ marks
      · rw [if_pos member]
        have cleared := marked.clearState intact marksHeld member
        rwa [blockOf_payloadOf] at cleared
      · rw [if_neg member]
        have all : marks.filter (· ≠ payloadOf b.start) = marks := by
          apply List.filter_eq_self.2
          intro q old
          simpa using fun self : q = payloadOf b.start => member (self ▸ old)
        rwa [all]
    obtain ⟨m', ran', marked'⟩ := ih (fun x member => owned x (List.mem_cons_of_mem b member)) nodup (s.note marks b) next
      fun q member => marksHeld q (List.mem_filter.1 member).1
    -- The blocks that are left are judged by the same marks: the one taken off belongs to another block.
    have same (s : Survey) : rest.foldl (Survey.note (marks.filter (· ≠ payloadOf b.start))) s =
        rest.foldl (Survey.note marks) s := by
      refine List.foldl_ext _ _ _ fun s x member => ?_
      have other : x.start ≠ b.start := fun same => fresh (List.mem_map.2 ⟨x, member, same⟩)
      simp [Survey.note, List.mem_filter, other]
    refine ⟨m', ?_, ?_⟩
    · rw [surveyBlocks, run_bind ran, ran', same, List.foldl_cons]
    · rw [List.filter_filter] at marked'
      refine (congrArg (Marked m₀ · m') ?_).mp marked'
      apply List.filter_congr
      intro q _
      simp [Bool.and_comm]

/-- The outcome of a survey counts the marked blocks and lists the others. -/
theorem foldl_note (marks : List Nat) (bs : List Block) (s : Survey) : bs.foldl (Survey.note marks) s = {
    objectsLive := s.objectsLive + (bs.filter (payloadOf ·.start ∈ marks)).length
    bytesLive := s.bytesLive + totalSize (bs.filter (payloadOf ·.start ∈ marks))
    dead := (bs.filter (payloadOf ·.start ∉ marks)).reverse ++ s.dead } := by
  induction bs generalizing s with
  | nil => rfl
  | cons b rest ih =>
    rw [List.foldl_cons, ih, Survey.note]
    by_cases member : payloadOf b.start ∈ marks
    · simp [member, totalSize_cons]
      omega
    · simp [member]

end MarkSweep

end TracingHeap
