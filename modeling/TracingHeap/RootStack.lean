import Std.Data.HashSet.Lemmas
import TracingHeap.Error
import TracingHeap.Memory.Basic

/-! The slots from which everything in use is reached.

Frames of slots form a stack and are popped in reverse order of pushing. Global slots stay
registered. A frame is named by its depth and by a sequence number that is used once, so the handle
of a popped frame never names another one. -/

set_option autoImplicit false

namespace TracingHeap

structure RootHandle where
  depth : Nat
  sequence : Nat
  deriving DecidableEq, Repr, Inhabited

structure RootFrame where
  sequence : Nat
  /-- The slot registered last comes first. -/
  slots : List Slot := []
  deriving DecidableEq, Repr

structure RootStack where
  /-- The bottom frame comes first. -/
  frames : Array RootFrame := #[]
  globals : Array Slot := #[]
  nextSequence : Nat := 0
  deriving DecidableEq, Repr

namespace RootStack

def push (r : RootStack) : RootHandle × RootStack :=
  (⟨r.frames.size, r.nextSequence⟩,
    { r with frames := r.frames.push ⟨r.nextSequence, []⟩, nextSequence := r.nextSequence + 1 })

/-- Remove the top frame, which has to be the one that the handle names. -/
def pop (r : RootStack) (h : RootHandle) : Except RootViolation RootStack :=
  match r.frames.back? with
  | none => .error (.emptyStack h.sequence)
  | some top =>
    if top.sequence = h.sequence then .ok { r with frames := r.frames.pop }
    else .error (.outOfOrderPop top.sequence h.sequence)

/-- The handle names a frame that has not been popped. -/
def isLive (r : RootStack) (h : RootHandle) : Bool :=
  match r.frames[h.depth]? with
  | some frame => frame.sequence = h.sequence
  | none => false

/-- Register a slot in a frame. A slot may be registered more than once. -/
def add (r : RootStack) (h : RootHandle) (s : Slot) : Except RootViolation RootStack :=
  if r.isLive h then
    .ok { r with frames := r.frames.modify h.depth fun frame => { frame with slots := s :: frame.slots } }
  else .error (.staleHandle h.sequence)

/-- Register a slot for good. Registering it again has no effect. -/
def addGlobal (r : RootStack) (s : Slot) : RootStack :=
  if r.globals.contains s then r else { r with globals := r.globals.push s }

def depth (r : RootStack) : Nat := r.frames.size

def frameSlotCount (r : RootStack) : Nat := r.frames.foldl (fun n frame => n + frame.slots.length) 0

def globalCount (r : RootStack) : Nat := r.globals.size

/-- All slots: frame by frame from the bottom, in order of registration, then the globals. -/
def slots (r : RootStack) : List Slot :=
  (r.frames.toList.flatMap fun frame => frame.slots.reverse) ++ r.globals.toList

theorem add_of_not_isLive {r : RootStack} {h : RootHandle} (stale : r.isLive h = false) (s : Slot) :
    r.add h s = .error (.staleHandle h.sequence) := by
  rw [add, stale]; rfl

theorem slots_addGlobal (r : RootStack) (s : Slot) :
    (r.addGlobal s).slots = if s ∈ r.globals then r.slots else r.slots ++ [s] := by
  unfold addGlobal
  simp only [Array.contains_iff_mem]
  split
  · rfl
  · simp [slots]

end RootStack

/-- The slots that do not stand in `seen`, each once and where it stands first. -/
def distinctFrom (seen : Std.HashSet Slot) : List Slot → List Slot
  | [] => []
  | s :: rest => if seen.contains s then distinctFrom seen rest else s :: distinctFrom (seen.insert s) rest

/-- The slots of a list, each once and where it stands first. -/
def distinctSlots (slots : List Slot) : List Slot := distinctFrom ∅ slots

theorem mem_distinctFrom {seen : Std.HashSet Slot} {slots : List Slot} {s : Slot} :
    s ∈ distinctFrom seen slots ↔ s ∈ slots ∧ seen.contains s = false := by
  induction slots generalizing seen with
  | nil => simp [distinctFrom]
  | cons head rest ih =>
    rw [distinctFrom]
    by_cases same : s = head
    · subst same
      split <;> simp_all
    · split <;> simp_all [Ne.symm same]

theorem nodup_distinctFrom (seen : Std.HashSet Slot) (slots : List Slot) : (distinctFrom seen slots).Nodup := by
  induction slots generalizing seen with
  | nil => simp [distinctFrom]
  | cons head rest ih =>
    rw [distinctFrom]
    split
    · exact ih seen
    · refine List.nodup_cons.2 ⟨fun again => ?_, ih _⟩
      simpa [Std.HashSet.contains_insert] using (mem_distinctFrom.1 again).2

@[simp] theorem mem_distinctSlots {slots : List Slot} {s : Slot} : s ∈ distinctSlots slots ↔ s ∈ slots := by
  simp [distinctSlots, mem_distinctFrom]

theorem nodup_distinctSlots (slots : List Slot) : (distinctSlots slots).Nodup := nodup_distinctFrom ∅ slots

end TracingHeap
