import TracingHeap.Proofs.MarkSweep.Sweep

/-! A whole collection that does not move. -/

set_option autoImplicit false

namespace TracingHeap.MarkSweep

variable {types : TypeTable} {roots : List Slot} {c c' : MarkSweep} {m m' : Memory}

/-! ### In any memory -/

theorem always_markObject (types : TypeTable) (c : MarkSweep) (p : Nat) :
    Always Memory.SameShape (c.markObject types p) := by
  have refl (m : Memory) : m.SameShape m := .refl m
  have trans (m m' m'' : Memory) (first : m.SameShape m') (second : m'.SameShape m'') := first.trans second
  unfold markObject
  by_cases owns : c.owns p = true
  · simp only [owns, Bool.not_true, Bool.false_eq_true, if_false]
    refine .bind trans (Access.always_look refl _) fun (header, state) => ?_
    cases state with
    | marked => exact .pure refl _
    | forwarded => exact .throw refl _
    | unmarked =>
      refine .bind trans (Access.always_guarded refl fun m => Memory.sameShape_setByte m _ _) fun _ => ?_
      exact .bind trans (Access.always_look refl _) fun words => .pure refl _
  · simp only [owns, Bool.not_false, if_true]
    exact .throw refl _

theorem always_mark (types : TypeTable) (c : MarkSweep) (rounds : Nat) (work : List Nat) :
    Always Memory.SameShape (c.mark types rounds work) := by
  induction rounds generalizing work with
  | zero =>
    intro m
    rw [mark, run_bind_get]
    split <;> exact .refl m
  | succ rounds ih =>
    intro m
    rw [mark_succ]
    split
    · exact .refl m
    · exact Always.bind (fun _ _ _ first second => first.trans second) (always_markObject types c _) (fun _ => ih _) m

theorem always_surveyBlocks (s : Survey) (bs : List Block) : Always Memory.SameShape (surveyBlocks s bs) := by
  have refl (m : Memory) : m.SameShape m := .refl m
  have trans (m m' m'' : Memory) (first : m.SameShape m') (second : m'.SameShape m'') := first.trans second
  induction bs generalizing s with
  | nil => exact .pure refl s
  | cons b rest ih =>
    refine .bind trans (.bind trans (Access.always_look refl _) fun (header, state) => ?_) ih
    cases state with
    | marked => exact .bind trans (Access.always_guarded refl fun m => Memory.sameShape_setByte m _ _) fun _ => .pure refl _
    | unmarked => exact .pure refl _
    | forwarded => exact .throw refl _

theorem always_reclaimAll (c : MarkSweep) (dead : List Block) : Always Memory.SameShape (c.reclaimAll dead) := by
  have refl (m : Memory) : m.SameShape m := .refl m
  have trans (m m' m'' : Memory) (first : m.SameShape m') (second : m'.SameShape m'') := first.trans second
  induction dead generalizing c with
  | nil => exact .pure refl c
  | cons b rest ih =>
    refine .bind trans (.bind trans ?_ fun _ => .pure refl _) ih
    exact Access.always_guarded refl fun m => Memory.sameShape_clear m _ _

/-- The arenas stay, also if the collection fails. -/
theorem always_collect (types : TypeTable) (roots : List Slot) (c : MarkSweep) :
    Always Memory.SameShape (c.collect types roots) := by
  have refl (m : Memory) : m.SameShape m := .refl m
  have trans (m m' m'' : Memory) (first : m.SameShape m') (second : m'.SameShape m'') := first.trans second
  refine .bind trans (Access.always_look refl _) fun words => .bind trans (always_mark types c _ _) fun _ => ?_
  exact .bind trans (always_surveyBlocks _ _) fun s => .bind trans (always_reclaimAll c _) fun _ => .pure refl _

/-- Whatever is in memory, a collection that succeeds has given back some recorded blocks, each once. -/
theorem collect_eq_ok {report : CollectionReport} (ran : c.collect types roots m = .ok (c', report) m') :
    ∃ m₁ dead, m.SameShape m₁ ∧ (∀ b ∈ dead, c.records[b.start]? = some b.size) ∧ (dead.map Block.start).Nodup ∧
      c.reclaimAll dead m₁ = .ok c' m' := by
  unfold collect at ran
  cases read : roots.mapM m.readSlot with
  | error e => rw [run_bind_error (Access.look_error read)] at ran; cases ran
  | ok words =>
    rw [run_bind (Access.look_ok read)] at ran
    cases marking : c.mark types (c.records.size + 1) (words.filter (· ≠ 0)).reverse m with
    | error e m₁ => rw [run_bind_error marking] at ran; cases ran
    | ok _ m₁ =>
      have shape₁ := (always_mark types c _ _).of_ok marking
      rw [run_bind marking, sweep] at ran
      cases survey : surveyBlocks {} c.blocks m₁ with
      | error e m₂ => rw [run_bind_error survey] at ran; cases ran
      | ok s m₂ =>
        obtain ⟨shape₂, -, l, sub, dead⟩ := surveyBlocks_dead survey
        have deadBlocks : s.dead = l.reverse := by rw [dead]; exact List.append_nil _
        refine ⟨m₂, s.dead, shape₁.trans shape₂, fun b member => ?_, ?_, ?_⟩
        · rw [deadBlocks] at member
          exact mem_blocks.1 (sub.subset (List.mem_reverse.1 member))
        · rw [deadBlocks]
          exact nodup_starts_reverse sub
        · rw [run_bind survey] at ran
          cases reclaimed : c.reclaimAll s.dead m₂ with
          | error e m₃ => rw [run_bind_error reclaimed] at ran; cases ran
          | ok c₃ m₃ =>
            rw [run_bind reclaimed] at ran
            cases ran
            rfl

/-- Whatever is in memory, a collection that succeeds leaves the books in order. -/
theorem ledger_collect (ledger : Ledger c) (regular : m.Regular) (inside : m.holds c.start c.size = true)
    {report : CollectionReport} (ran : c.collect types roots m = .ok (c', report) m') :
    Ledger c' ∧ c'.start = c.start ∧ c'.size = c.size ∧ m.SameShape m' := by
  obtain ⟨m₁, dead, shape, records, nodup, reclaimed⟩ := collect_eq_ok ran
  obtain ⟨c₂, m₂, reclaimed', ledger', start', size', shape', -⟩ :=
    reclaimAll_ok ledger (regular.of_sameShape shape) (shape.holds _ _ ▸ inside) records nodup
  cases reclaimed.symm.trans reclaimed'
  exact ⟨ledger', start', size', shape.trans shape'⟩

/-- What is left when some blocks have been given back. -/
def released (c : MarkSweep) (dead : List Block) : MarkSweep :=
  dead.foldl (fun c b => { c with records := c.records.erase b.start, free := c.free.insert b.start b.size }) c

theorem reclaimAll_released {dead : List Block} (ran : c.reclaimAll dead m = .ok c' m') : c' = c.released dead := by
  induction dead generalizing c m with
  | nil => cases ran; rfl
  | cons b rest ih =>
    rw [reclaimAll] at ran
    cases cleared : Access.clear b.start b.size m with
    | error x m₁ =>
      have failed : c.reclaim b m = .error x m₁ := run_bind_error cleared
      cases ran.symm.trans (run_bind_error failed)
    | ok u m₁ =>
      have freed : c.reclaim b m = .ok { c with
          records := c.records.erase b.start, free := c.free.insert b.start b.size } m₁ := run_bind cleared
      rw [run_bind freed] at ran
      exact ih ran

/-! ### Where the headers are in order -/

/-- The address lies in a recorded block that cannot be reached. -/
def Dead (types : TypeTable) (roots : List Slot) (c : MarkSweep) (m : Memory) (a : Nat) : Prop :=
  ∃ b n, c.records[b]? = some n ∧ ¬ Reach types roots m (payloadOf b) ∧ b ≤ a ∧ a < b + n

/-- Exactly what can be reached keeps its block and all its bytes; the other blocks are zeroed and freed. -/
structure Collected (types : TypeTable) (roots : List Slot) (c : MarkSweep) (m : Memory) (c' : MarkSweep) (m' : Memory) :
    Prop where
  ledger : Ledger c'
  start : c'.start = c.start
  size : c'.size = c.size
  shape : m.SameShape m'
  cells : m'.cells = m.cells
  records : ∀ b n : Nat, c'.records[b]? = some n ↔ c.records[b]? = some n ∧ Reach types roots m (payloadOf b)
  free : ∀ a, Covers c'.free.blocks a ↔ Dead types roots c m a ∨ Covers c.free.blocks a
  zeroed : ∀ a, Dead types roots c m a → m'.byte a = 0
  kept : ∀ a, ¬ Dead types roots c m a → m'.byte a = m.byte a

/-- The objects that a collection marks, or why it fails. -/
def survivors (types : TypeTable) (roots : List Slot) (c : MarkSweep) (m : Memory) : Reading (List Nat) :=
  traverse c.owns (types.tracedWords m) (c.records.size + 1) [] ((roots.map m.slot).filter (· ≠ 0)).reverse

/-- They follow from what the collector may look at. -/
theorem survivors_congr (alike : Alike types roots (c.owns · = true) m m') :
    c.survivors types roots m' = c.survivors types roots m := by
  unfold survivors
  rw [List.map_congr_left alike.roots]
  exact traverse_congr alike.words _ _ _

/-- The blocks of the marked objects. -/
def live (c : MarkSweep) (marks : List Nat) : List Block := c.blocks.filter (payloadOf ·.start ∈ marks)

def lost (c : MarkSweep) (marks : List Nat) : List Block := c.blocks.filter (payloadOf ·.start ∉ marks)

/-- The report of a collection that keeps the marked objects. -/
def reportOf (c : MarkSweep) (marks : List Nat) : CollectionReport where
  objectsReclaimed := (c.lost marks).length
  bytesReclaimed := totalSize (c.lost marks)
  objectsLive := (c.live marks).length
  bytesLive := totalSize (c.live marks)

/-- Every mark lies on a recorded block, so a survey leaves none behind. -/
theorem filter_marks {marks : List Nat} (marksHeld : ∀ p ∈ marks, c.owns p = true) :
    marks.filter (· ∉ c.blocks.map (payloadOf ·.start)) = [] := by
  apply List.filter_eq_nil_iff.2
  intro p member
  obtain ⟨low, n, record⟩ := owns_iff.1 (marksHeld p member)
  have listed : p ∈ c.blocks.map (payloadOf ·.start) :=
    List.mem_map.2 ⟨⟨blockOf p, n⟩, mem_blocks.2 record, payloadOf_blockOf low⟩
  simpa using listed

theorem foldl_note_empty (c : MarkSweep) (marks : List Nat) : c.blocks.foldl (Survey.note marks) {} =
    { objectsLive := (c.live marks).length, bytesLive := totalSize (c.live marks), dead := (c.lost marks).reverse } := by
  rw [foldl_note]
  simp [live, lost]

section

variable {marks : List Nat} (reach : ∀ p, p ∈ marks ↔ Reach types roots m p)

include reach

theorem mem_lost {b : Block} : b ∈ (c.lost marks).reverse ↔
    c.records[b.start]? = some b.size ∧ ¬ Reach types roots m (payloadOf b.start) := by
  rw [List.mem_reverse, lost, List.mem_filter, mem_blocks, ← reach]
  simp

/-- The survey finds dead what has no mark, and the marks are on what can be reached. -/
theorem covers_lost {a : Nat} : Covers (c.lost marks).reverse a ↔ Dead types roots c m a := by
  constructor
  · rintro ⟨b, member, low, high⟩
    obtain ⟨record, lost⟩ := (mem_lost reach).1 member
    exact ⟨b.start, b.size, record, lost, low, high⟩
  · rintro ⟨b, n, record, lost, low, high⟩
    exact ⟨⟨b, n⟩, (mem_lost reach).2 ⟨record, lost⟩, low, high⟩

end

section

variable (intact : Intact types (c.owns · = true) m)

include intact

/-- The survivors are what can be reached. There are none if a word that is met leads nowhere, or if the count of an
object that is met is too large. -/
theorem survivors_spec (roots : List Slot) : match c.survivors types roots m with
    | .ok marks => (∀ p, p ∈ marks ↔ Reach types roots m p) ∧ (∀ p ∈ marks, c.owns p = true) ∧
        ∀ p ∈ marks, ∃ slots, types.tracedSlots m p = .ok slots
    | .error x => (∃ p, x = .corrupted p .danglingReference ∧ Met types roots (c.owns · = true) m p ∧
        ¬ c.owns p = true) ∨ ∃ p count capacity, x = .corrupted p (.regionOverflow count capacity) ∧
        Met types roots (c.owns · = true) m p ∧ c.owns p = true ∧ types.tracedWords m p = .error x := by
  have root (p : Nat) (member : p ∈ ((roots.map m.slot).filter (· ≠ 0)).reverse) : ∃ s ∈ roots, m.slot s = p ∧ p ≠ 0 := by
    obtain ⟨word, value⟩ := List.mem_filter.1 (List.mem_reverse.1 member)
    obtain ⟨s, root, rfl⟩ := List.mem_map.1 word
    exact ⟨s, root, rfl, by simpa using value⟩
  have met (p : Nat) (member : p ∈ ((roots.map m.slot).filter (· ≠ 0)).reverse) :
      Met types roots (c.owns · = true) m p := by
    obtain ⟨s, root, rfl, value⟩ := root p member
    exact .root root value
  have found := traverse_spec intact (c.records.size + 1) (.start root) (by simp) met (by simp)
  unfold survivors
  cases ran : traverse c.owns (types.tracedWords m) (c.records.size + 1) [] ((roots.map m.slot).filter (· ≠ 0)).reverse with
  | error x =>
    rw [ran] at found
    exact found
  | ok marks =>
    rw [ran] at found
    obtain ⟨frontier, marksHeld, -, started⟩ := found
    refine ⟨frontier.mem_iff_reach fun s root value => ?_, marksHeld, frontier.listed⟩
    exact started _ (List.mem_reverse.2 (List.mem_filter.2 ⟨List.mem_map_of_mem root, by simpa using value⟩))

variable (ledger : Ledger c) (read : roots.mapM m.readSlot = .ok (roots.map m.slot))
  (inside : m.holds c.start c.size = true)

include ledger read inside

theorem collect_ok {marks : List Nat} (found : c.survivors types roots m = .ok marks) :
    ∃ c' m', c.collect types roots m = .ok (c', c.reportOf marks) m' ∧ Collected types roots c m c' m' ∧
      c' = c.released (c.lost marks).reverse := by
  obtain ⟨reach, marksHeld, -⟩ := found ▸ survivors_spec intact roots
  have marking := mark_spec intact (c.records.size + 1) ((roots.map m.slot).filter (· ≠ 0)).reverse (.nil m) .nil
    (by simp) (by simp)
  rw [show traverse _ _ _ _ _ = _ from found] at marking
  obtain ⟨m₁, marking, marked⟩ := marking
  obtain ⟨m₂, survey, unmarked⟩ := surveyBlocks_ok intact
    (fun b member => owns_payloadOf (mem_blocks.1 member)) (nodup_starts c) {} marked marksHeld
  rw [filter_marks marksHeld] at unmarked
  rw [foldl_note_empty] at survey
  have nodup : ((c.lost marks).reverse.map Block.start).Nodup := nodup_starts_reverse List.filter_sublist
  obtain ⟨c', m', reclaimed, ledger', start', size', shape', cells', records', covers', bytes'⟩ :=
    reclaimAll_ok ledger (intact.regular.of_sameShape unmarked.shape) (unmarked.shape.holds _ _ ▸ inside)
      (fun b member => ((mem_lost reach).1 member).1) nodup
  have ran : c.collect types roots m = .ok (c', c.reportOf marks) m' := by
    unfold collect
    rw [run_bind (Access.look_ok read), run_bind marking, sweep, run_bind survey, run_bind reclaimed]
    show EStateM.Result.ok (c', _) m' = _
    simp [reportOf, totalSize_reverse]
  refine ⟨c', m', ran, ?_, reclaimAll_released reclaimed⟩
  constructor
  case ledger => exact ledger'
  case start => exact start'
  case size => exact size'
  case shape => exact unmarked.shape.trans shape'
  case cells => exact cells'.trans unmarked.cells
  case records =>
    intro b n
    rw [records']
    constructor
    · intro found
      split at found
      · cases found
      · next alive =>
        refine ⟨found, Classical.byContradiction fun lost => alive ?_⟩
        exact List.mem_map.2 ⟨⟨b, n⟩, (mem_lost reach).2 ⟨found, lost⟩, rfl⟩
    · rintro ⟨found, alive⟩
      rw [if_neg]
      · exact found
      · intro member
        obtain ⟨x, gone, rfl⟩ := List.mem_map.1 member
        exact ((mem_lost reach).1 gone).2 alive
  case free =>
    intro a
    rw [covers', covers_lost reach]
  case zeroed => exact fun a gone => (bytes' a).1 ((covers_lost reach).2 gone)
  case kept =>
    intro a alive
    rw [(bytes' a).2 fun gone => alive ((covers_lost reach).1 gone), unmarked.byte_of_nil]

omit ledger inside in
/-- One that fails leaves marks behind. -/
theorem collect_error {x : Failure} (failed : c.survivors types roots m = .error x) :
    ∃ m' marks, c.collect types roots m = .error x m' ∧ Marked m marks m' ∧ ∀ p ∈ marks, c.owns p = true := by
  have marking := mark_spec intact (c.records.size + 1) ((roots.map m.slot).filter (· ≠ 0)).reverse (.nil m) .nil
    (by simp) (by simp)
  rw [show traverse _ _ _ _ _ = _ from failed] at marking
  obtain ⟨m', marks, marking, marked, marksHeld⟩ := marking
  refine ⟨m', marks, ?_, marked, marksHeld⟩
  unfold collect
  rw [run_bind (Access.look_ok read), run_bind_error marking]

end

/-- In a consistent memory there always are survivors. -/
theorem survivors_ok (consistent : Consistent types roots (c.owns · = true) m) :
    ∃ marks, c.survivors types roots m = .ok marks ∧ ∀ p, p ∈ marks ↔ Reach types roots m p := by
  have found := survivors_spec consistent.toIntact roots
  cases ran : c.survivors types roots m with
  | ok marks =>
    rw [ran] at found
    exact ⟨marks, rfl, found.1⟩
  | error x =>
    rw [ran] at found
    rcases found with ⟨p, -, met, lost⟩ | ⟨p, count, capacity, -, -, holds, failed⟩
    · exact absurd (consistent.held_of_reach met.reach) lost
    · obtain ⟨slots, -, words⟩ := consistent.tracedWords_eq holds
      cases words.symm.trans failed

end TracingHeap.MarkSweep
