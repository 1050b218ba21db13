import Mathlib.Data.List.Basic
import TracingHeap.Heap.Basic
import TracingHeap.Proofs.Computation

/-! The root registry is a stack.

A program names frames by the handles that it was given, in any order and any number of times. Beside it stands a
diary of what the program has asked for, in which a frame is named by the number of its push. The two never
disagree: sequence numbers grow along the stack and none is issued twice, so a handle is as good as that number. -/

set_option autoImplicit false

namespace TracingHeap

/-- A call on the registry. A frame is named by the number of the push that has issued its handle. -/
inductive RootCall where
  | push
  | pop (number : Nat)
  | add (number : Nat) (s : Slot)
  | addGlobal (s : Slot)
  deriving DecidableEq, Repr

/-! ### What is meant -/

/-- What has become of the calls so far. -/
structure RootDiary where
  pushes : Nat := 0
  /-- The frames that have been pushed and not popped, in the order of their pushes. -/
  opened : List Nat := []
  /-- The slots that a frame was given, in the order of registration. -/
  added : Nat → List Slot := fun _ => []
  /-- All registrations of global slots. -/
  globals : List Slot := []

namespace RootDiary

/-- The frame has been pushed and not popped, and no other such frame was pushed later. -/
def IsTop (d : RootDiary) (number : Nat) : Prop := number ∈ d.opened ∧ ∀ other ∈ d.opened, other ≤ number

instance (d : RootDiary) (number : Nat) : Decidable (d.IsTop number) := inferInstanceAs (Decidable (_ ∧ _))

def note (d : RootDiary) : RootCall → RootDiary
  | .push => { d with pushes := d.pushes + 1, opened := d.opened ++ [d.pushes] }
  | .pop number => if d.IsTop number then { d with opened := d.opened.erase number } else d
  | .add number s =>
    if number ∈ d.opened then
      { d with added := fun other => if other = number then d.added number ++ [s] else d.added other }
    else d
  | .addGlobal s => { d with globals := d.globals ++ [s] }

/-- The diary of a sequence of calls. -/
def of (calls : List RootCall) : RootDiary := calls.foldl note {}

/-- The slots of the frames, then each global once, where it was registered first. -/
def slots (d : RootDiary) : List Slot := d.opened.flatMap d.added ++ d.globals.eraseDups

/-- Frames are numbered in the order of their pushes. -/
structure Ordered (d : RootDiary) : Prop where
  sorted : d.opened.Pairwise (· < ·)
  below : ∀ number ∈ d.opened, number < d.pushes

theorem Ordered.note {d : RootDiary} (ordered : d.Ordered) (call : RootCall) : (d.note call).Ordered := by
  cases call with
  | push =>
    refine ⟨List.pairwise_append.2 ⟨ordered.sorted, List.pairwise_singleton .., ?_⟩, fun number member => ?_⟩
    · intro number old other new
      rw [List.mem_singleton.1 new]
      exact ordered.below number old
    · rcases List.mem_append.1 member with old | new
      · exact Nat.lt_succ_of_lt (ordered.below number old)
      · rw [List.mem_singleton.1 new]
        exact Nat.lt_succ_self _
  | pop number =>
    simp only [RootDiary.note]
    split
    · exact ⟨ordered.sorted.sublist List.erase_sublist, fun other member => ordered.below other (List.mem_of_mem_erase member)⟩
    · exact ordered
  | add number s =>
    simp only [RootDiary.note]
    split <;> exact ⟨ordered.sorted, ordered.below⟩
  | addGlobal s => exact ⟨ordered.sorted, ordered.below⟩

theorem Ordered.nodup {d : RootDiary} (ordered : d.Ordered) : d.opened.Nodup :=
  ordered.sorted.imp fun less => Nat.ne_of_lt less

/-- The top frame is the last of the open ones. -/
theorem Ordered.isTop_iff {d : RootDiary} (ordered : d.Ordered) {number : Nat} :
    d.IsTop number ↔ d.opened.getLast? = some number := by
  constructor
  · rintro ⟨member, greatest⟩
    obtain ⟨front, rest, split⟩ := List.append_of_mem member
    have nothing : rest = [] := by
      refine List.eq_nil_iff_forall_not_mem.2 fun other behind => ?_
      have sorted := ordered.sorted
      rw [split, List.pairwise_append, List.pairwise_cons] at sorted
      have less := sorted.2.1.1 other behind
      have le := greatest other (split ▸ List.mem_append_right _ (List.mem_cons_of_mem _ behind))
      omega
    rw [split, nothing, List.getLast?_concat]
  · intro last
    obtain ⟨front, split⟩ := List.getLast?_eq_some_iff.1 last
    refine ⟨split ▸ List.mem_append_right _ List.mem_cons_self, fun other member => ?_⟩
    have sorted := ordered.sorted
    rw [split] at sorted member
    rcases List.mem_append.1 member with before | same
    · exact Nat.le_of_lt ((List.pairwise_append.1 sorted).2.2 other before number List.mem_cons_self)
    · exact Nat.le_of_eq (List.mem_singleton.1 same)

/-- What is not open any more does not come back. -/
theorem notMem_note {d : RootDiary} {number : Nat} (issued : number < d.pushes) (closed : number ∉ d.opened)
    (call : RootCall) : number < (d.note call).pushes ∧ number ∉ (d.note call).opened := by
  cases call with
  | push =>
    refine ⟨Nat.lt_succ_of_lt issued, fun member => ?_⟩
    rcases List.mem_append.1 member with old | new
    · exact closed old
    · exact absurd (List.mem_singleton.1 new) (Nat.ne_of_lt issued)
  | pop other =>
    simp only [note]
    split
    · exact ⟨issued, fun member => closed (List.mem_of_mem_erase member)⟩
    · exact ⟨issued, closed⟩
  | add other s =>
    simp only [note]
    split <;> exact ⟨issued, closed⟩
  | addGlobal s => exact ⟨issued, closed⟩

end RootDiary

/-! ### What is done -/

/-- A registry in use, with the handles that it has issued. -/
structure RootUse where
  roots : RootStack := {}
  handles : List RootHandle := []

namespace RootUse

-- A number that no push has had yet names no handle, so there is nothing to call the registry with.
def step (u : RootUse) : RootCall → RootUse
  | .push => ⟨u.roots.push.2, u.handles ++ [u.roots.push.1]⟩
  | .pop number =>
    match u.handles[number]?.map u.roots.pop with
    | some (.ok roots) => { u with roots }
    | _ => u
  | .add number s =>
    match u.handles[number]?.map (u.roots.add · s) with
    | some (.ok roots) => { u with roots }
    | _ => u
  | .addGlobal s => { u with roots := u.roots.addGlobal s }

/-- The registry after a sequence of calls. -/
def of (calls : List RootCall) : RootUse := calls.foldl step {}

/-- A registry in use and its diary agree. -/
structure Recorded (u : RootUse) (d : RootDiary) : Prop where
  ordered : d.Ordered
  issued : u.handles.length = d.pushes
  next : u.roots.nextSequence = d.pushes
  /-- The handle of a frame carries its number. -/
  sequence : ∀ (number : Nat) (h : RootHandle), u.handles[number]? = some h → h.sequence = number
  opened : u.roots.frames.toList.map RootFrame.sequence = d.opened
  /-- It also carries the place of the frame, for as long as that is on the stack. -/
  place : ∀ (i : Nat) (frame : RootFrame), u.roots.frames[i]? = some frame → u.handles[frame.sequence]? = some ⟨i, frame.sequence⟩
  slots : ∀ frame ∈ u.roots.frames.toList, frame.slots.reverse = d.added frame.sequence
  unborn : ∀ number, d.pushes ≤ number → d.added number = []
  globals : u.roots.globals.toList = d.globals.eraseDups

namespace Recorded

variable {u : RootUse} {d : RootDiary} {number : Nat} {h : RootHandle} (agrees : u.Recorded d)

include agrees

theorem isLive_iff (issued : u.handles[number]? = some h) : u.roots.isLive h = true ↔ number ∈ d.opened := by
  have named := agrees.sequence number h issued
  rw [← agrees.opened, List.mem_map, RootStack.isLive]
  constructor
  · intro live
    split at live
    · next frame found =>
      exact ⟨frame, Array.mem_toList_iff.2 (Array.mem_of_getElem? found), (of_decide_eq_true live).trans named⟩
    · cases live
  · rintro ⟨frame, member, same⟩
    obtain ⟨i, found⟩ := List.mem_iff_getElem?.1 member
    rw [Array.getElem?_toList] at found
    have placed := agrees.place i frame found
    rw [same, issued] at placed
    cases placed
    simp only [found, same, decide_true]

theorem slots_eq : u.roots.slots = d.slots := by
  rw [RootStack.slots, RootDiary.slots, agrees.globals, ← agrees.opened, List.flatMap_map]
  congr 1
  exact List.flatMap_congr fun frame member => agrees.slots frame member

/-- What a pop comes to is decided by the last open frame. -/
theorem pop_eq (issued : u.handles[number]? = some h) : u.roots.pop h =
    match d.opened.getLast? with
    | none => .error (.emptyStack number)
    | some top => if top = number then .ok { u.roots with frames := u.roots.frames.pop }
        else .error (.outOfOrderPop top number) := by
  rw [RootStack.pop, ← agrees.opened, List.getLast?_map, Array.getLast?_toList, agrees.sequence number h issued]
  cases u.roots.frames.back? <;> rfl

theorem pop_ok (issued : u.handles[number]? = some h) (top : d.IsTop number) :
    u.roots.pop h = .ok { u.roots with frames := u.roots.frames.pop } := by
  rw [agrees.pop_eq issued, agrees.ordered.isTop_iff.1 top]
  exact if_pos rfl

theorem pop_error (issued : u.handles[number]? = some h) (other : ¬ d.IsTop number) :
    ∃ v, u.roots.pop h = .error v := by
  rw [agrees.pop_eq issued]
  rw [agrees.ordered.isTop_iff] at other
  cases last : d.opened.getLast? with
  | none => exact ⟨_, rfl⟩
  | some top => exact ⟨_, if_neg fun same => other (last.trans (congrArg some same))⟩

theorem push : (u.step .push).Recorded (d.note .push) := by
  have frames : (u.step .push).roots.frames = u.roots.frames.push ⟨d.pushes, []⟩ := by
    rw [← agrees.next]
    rfl
  constructor
  case ordered => exact agrees.ordered.note .push
  case issued => exact (List.length_append).trans (congrArg (· + 1) agrees.issued)
  case next => exact congrArg (· + 1) agrees.next
  case sequence =>
    intro number h issued
    change (u.handles ++ [_])[number]? = some h at issued
    rw [List.getElem?_append] at issued
    split at issued
    · exact agrees.sequence number h issued
    · next out =>
      have below := (List.getElem?_eq_some_iff.1 issued).1
      have last : number = u.handles.length := by
        rw [List.length_singleton] at below
        omega
      rw [last, Nat.sub_self] at issued
      cases issued
      rw [last, agrees.issued]
      exact agrees.next
  case opened =>
    rw [frames, Array.toList_push, List.map_append, agrees.opened]
    rfl
  case place =>
    intro i frame found
    change (u.handles ++ [⟨u.roots.frames.size, u.roots.nextSequence⟩])[frame.sequence]? = _
    rw [frames, Array.getElem?_push] at found
    split at found
    · next last =>
      cases found
      rw [last, agrees.next, ← agrees.issued, List.getElem?_concat_length]
    · have old := agrees.place i frame found
      rw [List.getElem?_append_left (List.getElem?_eq_some_iff.1 old).1, old]
  case slots =>
    intro frame member
    rw [frames, Array.toList_push] at member
    rcases List.mem_append.1 member with old | new
    · exact agrees.slots frame old
    · rw [List.mem_singleton.1 new]
      exact (agrees.unborn d.pushes (Nat.le_refl _)).symm
  case unborn => exact fun number above => agrees.unborn number (Nat.le_of_succ_le above)
  case globals => exact agrees.globals

/-- A frame that no handle has been issued for is not open. -/
theorem notMem_opened (unissued : u.handles[number]? = none) : number ∉ d.opened := fun member => by
  have below := agrees.ordered.below number member
  have issued := agrees.issued
  have out := List.getElem?_eq_none_iff.1 unissued
  omega

theorem erase_top (top : d.IsTop number) : d.opened.erase number = d.opened.dropLast := by
  obtain ⟨front, split⟩ := List.getLast?_eq_some_iff.1 (agrees.ordered.isTop_iff.1 top)
  have nodup := agrees.ordered.nodup
  rw [split] at nodup ⊢
  have absent : number ∉ front := fun member =>
    (List.nodup_append.1 nodup).2.2 number member number List.mem_cons_self rfl
  rw [List.erase_append_right _ absent, List.dropLast_concat, List.erase_cons_head, List.append_nil]

theorem pop (number : Nat) : (u.step (.pop number)).Recorded (d.note (.pop number)) := by
  have noted := agrees.ordered.note (.pop number)
  cases issued : u.handles[number]? with
  | none =>
    have other : ¬ d.IsTop number := fun top => agrees.notMem_opened issued top.1
    simp only [step, issued, RootDiary.note, Option.map_none, if_neg other]
    exact agrees
  | some h =>
    by_cases top : d.IsTop number
    · simp only [step, issued, RootDiary.note, Option.map_some, agrees.pop_ok issued top, if_pos top] at noted ⊢
      have fewer {i : Nat} {frame : RootFrame} (found : u.roots.frames.pop[i]? = some frame) :
          u.roots.frames[i]? = some frame := by
        rw [Array.getElem?_pop] at found
        split at found
        · exact found
        · cases found
      constructor
      case ordered => exact noted
      case issued => exact agrees.issued
      case next => exact agrees.next
      case sequence => exact agrees.sequence
      case opened =>
        show u.roots.frames.pop.toList.map RootFrame.sequence = d.opened.erase number
        rw [agrees.erase_top top, Array.toList_pop, List.map_dropLast, agrees.opened]
      case place => exact fun i frame found => agrees.place i frame (fewer found)
      case slots =>
        intro frame member
        obtain ⟨i, found⟩ := List.mem_iff_getElem?.1 member
        rw [Array.getElem?_toList] at found
        exact agrees.slots frame (Array.mem_toList_iff.2 (Array.mem_of_getElem? (fewer found)))
      case unborn => exact agrees.unborn
      case globals => exact agrees.globals
    · obtain ⟨v, refused⟩ := agrees.pop_error issued top
      simp only [step, issued, RootDiary.note, Option.map_some, refused, if_neg top]
      exact agrees

/-- A frame stays where it is, and keeps its number; only the one that is named gets the slot. -/
theorem frame_of_added (issued : u.handles[number]? = some h) (live : number ∈ d.opened) {s : Slot} {i : Nat}
    {frame : RootFrame}
    (found : (u.roots.frames.modify h.depth fun frame => { frame with slots := s :: frame.slots })[i]? = some frame) :
    ∃ old, u.roots.frames[i]? = some old ∧ frame.sequence = old.sequence ∧
      frame.slots.reverse = old.slots.reverse ++ if old.sequence = number then [s] else [] := by
  have alive := (agrees.isLive_iff issued).2 live
  rw [Array.getElem?_modify] at found
  split at found
  · next here =>
    obtain ⟨old, known, rfl⟩ := Option.map_eq_some_iff.1 found
    refine ⟨old, known, rfl, ?_⟩
    have same : old.sequence = number := by
      rw [RootStack.isLive, here, known] at alive
      exact (of_decide_eq_true alive).trans (agrees.sequence number h issued)
    rw [if_pos same]
    exact List.reverse_cons ..
  · next elsewhere =>
    refine ⟨frame, found, rfl, ?_⟩
    have other : frame.sequence ≠ number := fun same => by
      have placed := agrees.place i frame found
      rw [same, issued] at placed
      cases placed
      exact elsewhere rfl
    rw [if_neg other, List.append_nil]

theorem add (number : Nat) (s : Slot) : (u.step (.add number s)).Recorded (d.note (.add number s)) := by
  have noted := agrees.ordered.note (.add number s)
  cases issued : u.handles[number]? with
  | none =>
    simp only [step, issued, RootDiary.note, Option.map_none, if_neg (agrees.notMem_opened issued)]
    exact agrees
  | some h =>
    by_cases live : number ∈ d.opened
    · have alive := (agrees.isLive_iff issued).2 live
      simp only [step, issued, RootDiary.note, Option.map_some, RootStack.add, if_pos alive, if_pos live] at noted ⊢
      constructor
      case ordered => exact noted
      case issued => exact agrees.issued
      case next => exact agrees.next
      case sequence => exact agrees.sequence
      case opened =>
        rw [← agrees.opened]
        refine List.ext_getElem? fun i => ?_
        simp only [List.getElem?_map, Array.getElem?_toList, Array.getElem?_modify]
        split
        · cases u.roots.frames[i]? <;> rfl
        · rfl
      case place =>
        intro i frame found
        obtain ⟨old, known, same, -⟩ := agrees.frame_of_added issued live found
        rw [same]
        exact agrees.place i old known
      case slots =>
        intro frame member
        obtain ⟨i, found⟩ := List.mem_iff_getElem?.1 member
        rw [Array.getElem?_toList] at found
        obtain ⟨old, known, same, given⟩ := agrees.frame_of_added issued live found
        rw [given, same, agrees.slots old (Array.mem_toList_iff.2 (Array.mem_of_getElem? known))]
        by_cases here : old.sequence = number
        · simp only [here, if_pos]
        · simp only [here, if_false, List.append_nil]
      case unborn =>
        intro other above
        have below := agrees.ordered.below number live
        have different : other ≠ number := fun same => Nat.not_lt.2 above (same ▸ below)
        exact (if_neg different).trans (agrees.unborn other above)
      case globals => exact agrees.globals
    · have stale : u.roots.isLive h = false := Bool.eq_false_iff.2 fun alive => live ((agrees.isLive_iff issued).1 alive)
      simp only [step, issued, RootDiary.note, Option.map_some, RootStack.add_of_not_isLive stale, if_neg live]
      exact agrees

theorem addGlobal (s : Slot) : (u.step (.addGlobal s)).Recorded (d.note (.addGlobal s)) := by
  have same : (u.roots.addGlobal s).frames = u.roots.frames ∧
      (u.roots.addGlobal s).nextSequence = u.roots.nextSequence := by
    unfold RootStack.addGlobal
    split <;> exact ⟨rfl, rfl⟩
  constructor
  case ordered => exact agrees.ordered.note (.addGlobal s)
  case issued => exact agrees.issued
  case next => exact same.2.trans agrees.next
  case sequence => exact agrees.sequence
  case opened =>
    show (u.roots.addGlobal s).frames.toList.map RootFrame.sequence = d.opened
    rw [same.1, agrees.opened]
  case place => exact fun i frame found => agrees.place i frame (same.1 ▸ found)
  case slots => exact fun frame member => agrees.slots frame (same.1 ▸ member)
  case unborn => exact agrees.unborn
  case globals =>
    show (u.roots.addGlobal s).globals.toList = (d.globals ++ [s]).eraseDups
    rw [List.eraseDups_append, ← agrees.globals, RootStack.addGlobal]
    by_cases known : s ∈ u.roots.globals
    · have gone : [s].removeAll d.globals = [] := by
        have member : s ∈ d.globals := by
          rw [← List.mem_eraseDups, ← agrees.globals]
          exact Array.mem_toList_iff.2 known
        simp [List.removeAll, member]
      simp [known, gone]
    · have kept : [s].removeAll d.globals = [s] := by
        have absent : s ∉ d.globals := by
          rw [← List.mem_eraseDups, ← agrees.globals]
          exact fun member => known (Array.mem_toList_iff.1 member)
        simp [List.removeAll, absent]
      simp [known, kept, List.eraseDups_cons]

end Recorded

/-- One call keeps them in agreement. -/
theorem Recorded.step {u : RootUse} {d : RootDiary} (agrees : u.Recorded d) (call : RootCall) :
    (u.step call).Recorded (d.note call) := by
  cases call with
  | push => exact agrees.push
  | pop number => exact agrees.pop number
  | add number s => exact agrees.add number s
  | addGlobal s => exact agrees.addGlobal s

theorem recorded_of (calls : List RootCall) : (of calls).Recorded (.of calls) := by
  have start : Recorded {} {} := by
    refine ⟨⟨.nil, ?_⟩, rfl, rfl, ?_, rfl, ?_, ?_, fun _ _ => rfl, rfl⟩ <;> simp
  have follow (u : RootUse) (d : RootDiary) (agrees : u.Recorded d) :
      (calls.foldl RootUse.step u).Recorded (calls.foldl RootDiary.note d) := by
    induction calls generalizing u d with
    | nil => exact agrees
    | cons call rest ih => exact ih _ _ (agrees.step call)
  exact follow {} {} start

theorem of_append (calls later : List RootCall) : of (calls ++ later) = later.foldl step (of calls) := List.foldl_append

/-- A handle stays the handle of its push. -/
theorem handles_append {calls : List RootCall} {number : Nat} {h : RootHandle}
    (issued : (of calls).handles[number]? = some h) (later : List RootCall) :
    (of (calls ++ later)).handles[number]? = some h := by
  rw [of_append]
  generalize of calls = u at issued
  induction later generalizing u with
  | nil => exact issued
  | cons call rest ih =>
    refine ih _ ?_
    have below := (List.getElem?_eq_some_iff.1 issued).1
    cases call with
    | push => exact (List.getElem?_append_left below).trans issued
    | pop other => simp only [step]; split <;> exact issued
    | add other s => simp only [step]; split <;> exact issued
    | addGlobal s => exact issued

end RootUse

namespace RootDiary

theorem of_append (calls later : List RootCall) : of (calls ++ later) = later.foldl note (of calls) := List.foldl_append

/-- A frame that has been popped is not opened again. -/
theorem notMem_append {calls : List RootCall} {number : Nat} (issued : number < (of calls).pushes)
    (closed : number ∉ (of calls).opened) (later : List RootCall) : number ∉ (of (calls ++ later)).opened := by
  rw [of_append]
  generalize of calls = d at issued closed
  induction later generalizing d with
  | nil => exact closed
  | cons call rest ih =>
    obtain ⟨issued', closed'⟩ := notMem_note issued closed call
    exact ih _ issued' closed'

end RootDiary

/-- A heap keeps its registry when a change of it is refused. -/
theorem Heap.roots_of_fails {w : World} {change : RootStack → Except RootViolation RootStack}
    (failed : Fails (changeRoots change w)) : (after (changeRoots change w)).heap.roots = w.heap.roots := by
  unfold changeRoots at failed ⊢
  cases changed : change w.heap.roots with
  | error v =>
    simp only [changed]
    rfl
  | ok roots =>
    simp only [changed] at failed
    exact absurd failed (not_fails_ok _ _)

namespace RootUse

/-- Whatever has been asked of a registry, its answers are those of a stack. The top frame alone can be popped, and a
frame can be used as long as it is open; a handle whose frame has been popped is stale for good, also when another frame
lies at its depth. What is refused changes nothing, neither in the registry nor in that of a heap. The slots are those of
the open frames from the bottom in the order of registration, and then the globals, each once and where it came first. -/
theorem keeps_stack (calls : List RootCall) :
    (∀ number h, (of calls).handles[number]? = some h →
      ((∃ roots, (of calls).roots.pop h = .ok roots) ↔ (RootDiary.of calls).IsTop number) ∧
      (∀ s, (∃ roots, (of calls).roots.add h s = .ok roots) ↔ number ∈ (RootDiary.of calls).opened) ∧
      ((of calls).roots.isLive h = true ↔ number ∈ (RootDiary.of calls).opened) ∧
      (number ∉ (RootDiary.of calls).opened → ∀ later, (of (calls ++ later)).handles[number]? = some h ∧
        (of (calls ++ later)).roots.isLive h = false)) ∧
    (∀ number, ¬ (RootDiary.of calls).IsTop number → of (calls ++ [.pop number]) = of calls) ∧
    (∀ number s, number ∉ (RootDiary.of calls).opened → of (calls ++ [.add number s]) = of calls) ∧
    (∀ w : World, w.heap.roots = (of calls).roots → ∀ h s,
      (Fails (Heap.popRoot h w) → (after (Heap.popRoot h w)).heap.roots = (of calls).roots) ∧
      (Fails (Heap.addRoot h s w) → (after (Heap.addRoot h s w)).heap.roots = (of calls).roots)) ∧
    (of calls).handles.length = (RootDiary.of calls).pushes ∧ (RootDiary.of calls).opened.Pairwise (· < ·) ∧
    (of calls).roots.slots = (RootDiary.of calls).slots := by
  have agrees := recorded_of calls
  have popped (number : Nat) (h : RootHandle) (issued : (of calls).handles[number]? = some h) :
      (∃ roots, (of calls).roots.pop h = .ok roots) ↔ (RootDiary.of calls).IsTop number := by
    refine ⟨fun ⟨roots, done⟩ => ?_, fun top => ⟨_, agrees.pop_ok issued top⟩⟩
    by_contra other
    obtain ⟨v, refused⟩ := agrees.pop_error issued other
    cases done.symm.trans refused
  have added (number : Nat) (h : RootHandle) (issued : (of calls).handles[number]? = some h) (s : Slot) :
      (∃ roots, (of calls).roots.add h s = .ok roots) ↔ number ∈ (RootDiary.of calls).opened := by
    rw [← agrees.isLive_iff issued, RootStack.add]
    split <;> simp_all
  refine ⟨fun number h issued => ⟨popped number h issued, added number h issued, agrees.isLive_iff issued,
    fun closed later => ?_⟩, fun number other => ?_, fun number s closed => ?_, fun w same h s => ⟨fun failed => ?_,
    fun failed => ?_⟩, agrees.issued, agrees.ordered.sorted, agrees.slots_eq⟩
  · have issued' := handles_append issued later
    have below : number < (RootDiary.of calls).pushes := agrees.issued ▸ (List.getElem?_eq_some_iff.1 issued).1
    refine ⟨issued', Bool.eq_false_iff.2 fun live => ?_⟩
    exact RootDiary.notMem_append below closed later (((recorded_of _).isLive_iff issued').1 live)
  · rw [of_append]
    show step (of calls) (.pop number) = of calls
    simp only [step]
    cases issued : (of calls).handles[number]? with
    | none => rfl
    | some h =>
      obtain ⟨v, refused⟩ := agrees.pop_error issued other
      simp only [Option.map_some, refused]
  · rw [of_append]
    show step (of calls) (.add number s) = of calls
    simp only [step]
    cases issued : (of calls).handles[number]? with
    | none => rfl
    | some h =>
      cases outcome : (of calls).roots.add h s with
      | error v => simp only [Option.map_some, outcome]
      | ok roots => exact absurd ((added number h issued s).1 ⟨roots, outcome⟩) closed
  · rw [← same]
    exact Heap.roots_of_fails failed
  · rw [← same]
    exact Heap.roots_of_fails failed

/-- A frame is popped and another one pushed to its depth. The old handle is refused, the new one is not. -/
theorem keeps_stack_at_reused_depth :
    let calls : List RootCall := [.push, .add 0 (.cell 3), .pop 0, .push, .add 1 (.cell 5), .add 1 (.cell 5), .add 0 (.cell 7),
      .addGlobal (.cell 9), .addGlobal (.cell 9)]
    (of calls).handles = [⟨0, 0⟩, ⟨0, 1⟩] ∧ (¬ ∃ roots, (of calls).roots.pop ⟨0, 0⟩ = .ok roots) ∧
      (∃ roots, (of calls).roots.pop ⟨0, 1⟩ = .ok roots) ∧ (of calls).roots.isLive ⟨0, 0⟩ = false ∧
      (of calls).roots.slots = [.cell 5, .cell 5, .cell 9] := by
  intro calls
  have handles : (of calls).handles = [⟨0, 0⟩, ⟨0, 1⟩] := by decide
  obtain ⟨named, -, -, -, -, -, slots⟩ := keeps_stack calls
  obtain ⟨old, -, live, -⟩ := named 0 ⟨0, 0⟩ (by rw [handles]; rfl)
  obtain ⟨new, -⟩ := named 1 ⟨0, 1⟩ (by rw [handles]; rfl)
  have closed : ¬ (RootDiary.of calls).IsTop 0 := by decide
  have top : (RootDiary.of calls).IsTop 1 := by decide
  have stale : 0 ∉ (RootDiary.of calls).opened := by decide
  refine ⟨handles, fun done => closed (old.1 done), new.2 top, ?_, slots.trans (by decide)⟩
  exact Bool.eq_false_iff.2 fun alive => stale (live.1 alive)

end RootUse

end TracingHeap
